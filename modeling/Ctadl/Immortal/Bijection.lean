import Ctadl.Immortal.Interner

/-! # Interning is a growing bijection

The ghost state of a shard is the list of its slots with the values they hold, in the order in which
they were written. `ShardInv` ties the table, the buckets and the arena to it, and `Inv` ties the issued
ids to the lists of all shards. Only a write appends to a list, and only to that of the value's own
shard, after a look-up under the write lock has missed; so whatever the threads do, a list holds no
value twice and never changes at an index once written.
-/

set_option linter.unusedSectionVars false

namespace Ctadl.Immortal

open Function

section Bits

variable {config : Config} {s local_ raw h32 : ℕ}

theorem Config.limit_add_one (config : Config) : config.limit + 1 = 2 ^ (config.bits - config.log2S) := by
  have positive := Nat.two_pow_pos (config.bits - config.log2S)
  rw [limit, Nat.shiftLeft_eq, Nat.one_mul]
  omega

/-- The bits of an id: its local index and its shard. -/
def encode (config : Config) (s local_ : ℕ) : ℕ := (local_ + 1) <<< config.log2S ||| s

theorem encode_eq (inside : s < config.S) : encode config s local_ = (local_ + 1) * config.S + s := by
  rw [encode, ← Nat.shiftLeft_add_eq_or_of_lt inside, Nat.shiftLeft_eq, Config.S]

/-- An id is not 0 and fits in its bits. -/
theorem encode_bounds (inside : s < config.S) (lt : local_ < config.limit) :
    0 < encode config s local_ ∧ encode config s local_ < 2 ^ config.bits := by
  have positive : 0 < config.S := Nat.two_pow_pos _
  have one := config.limit_add_one
  have bits : 2 ^ config.bits = (config.limit + 1) * config.S := by
    have sum : config.bits = config.bits - config.log2S + config.log2S := by
      have := config.log2S_lt
      omega
    rw [one, Config.S, ← Nat.pow_add, ← sum]
  have le : (local_ + 2) * config.S ≤ (config.limit + 1) * config.S := Nat.mul_le_mul_right _ (by omega)
  rw [encode_eq inside, bits]
  have expand : (local_ + 2) * config.S = (local_ + 1) * config.S + config.S := Nat.succ_mul _ _
  have expand' : (local_ + 1) * config.S = local_ * config.S + config.S := Nat.succ_mul _ _
  omega

theorem encode_lt (inside : s < config.S) (lt : local_ < config.limit) : encode config s local_ < 2 ^ 32 :=
  (encode_bounds inside lt).2.trans_le (Nat.pow_le_pow_right (by decide) config.bits_le)

theorem limit_lt (config : Config) : config.limit < 2 ^ 32 := by
  have one := config.limit_add_one
  have le : 2 ^ (config.bits - config.log2S) ≤ 2 ^ 32 :=
    Nat.pow_le_pow_right (by decide) (by have := config.bits_le; omega)
  omega

theorem decode_eq : decode config raw = (raw % config.S, (raw / config.S + 2 ^ 32 - 1) % 2 ^ 32) := by
  rw [decode, Config.S, Nat.and_two_pow_sub_one_eq_mod, Nat.shiftRight_eq_div_pow]

theorem decode_encode (inside : s < config.S) (lt : local_ < config.limit) :
    decode config (encode config s local_) = (s, local_) := by
  have positive : 0 < config.S := Nat.two_pow_pos _
  have bound := limit_lt config
  have quotient : ((local_ + 1) * config.S + s) / config.S = local_ + 1 := by
    rw [Nat.add_comm, Nat.add_mul_div_right _ _ positive, Nat.div_eq_of_lt inside, Nat.zero_add]
  have rest : ((local_ + 1) * config.S + s) % config.S = s := by
    rw [Nat.add_comm, Nat.add_mul_mod_self_right, Nat.mod_eq_of_lt inside]
  have wraps : (local_ + 1 + 2 ^ 32 - 1) % 2 ^ 32 = local_ := by omega
  rw [decode_eq, encode_eq inside, quotient, rest, wraps]

/-- Bits that decode to a local index that some shard has are the bits of its id. -/
theorem encode_decode (lt : (decode config raw).2 < config.limit) (bound : raw < 2 ^ 32) :
    encode config (decode config raw).1 (decode config raw).2 = raw := by
  have positive : 0 < config.S := Nat.two_pow_pos _
  have limit := limit_lt config
  have inside : raw % config.S < config.S := Nat.mod_lt _ positive
  rw [decode_eq] at lt ⊢
  dsimp only at lt ⊢
  have small : raw / config.S < 2 ^ 32 := (Nat.div_le_self _ _).trans_lt bound
  have back := Nat.div_add_mod' raw config.S
  rw [encode_eq inside]
  generalize raw / config.S = quotient at lt small back ⊢
  -- without a local part the subtraction wraps to an index that no shard reaches
  have some : quotient ≠ 0 := by
    rintro rfl
    omega
  have same : (quotient + 2 ^ 32 - 1) % 2 ^ 32 + 1 = quotient := by omega
  rw [same, back]

theorem shardOf_lt {V : Type} {hash64 : V → ℕ} (v : V) : shardOf config hash64 v < config.S := by
  rw [shardOf, Config.S, Nat.and_two_pow_sub_one_eq_mod]
  exact Nat.mod_lt _ (Nat.two_pow_pos _)

/-- An entry of the table: the id, and half the hash above it. -/
def entry (raw h32 : ℕ) : ℕ := raw ||| h32 <<< 32

theorem entry_eq (bound : raw < 2 ^ 32) : entry raw h32 = h32 * 2 ^ 32 + raw := by
  rw [entry, Nat.or_comm, ← Nat.shiftLeft_add_eq_or_of_lt bound, Nat.shiftLeft_eq]

theorem entry_raw (bound : raw < 2 ^ 32) : entry raw h32 % 2 ^ 32 = raw := by
  rw [entry_eq bound]
  omega

theorem entry_hash (bound : raw < 2 ^ 32) (half : h32 < 2 ^ 32) : entry raw h32 >>> 32 % 2 ^ 32 = h32 := by
  rw [entry_eq bound, Nat.shiftRight_eq_div_pow]
  omega

end Bits

/-- What the storage of a type promises: an arena that keeps slots with their values, newest first. -/
structure Internable.Lawful {V : Type} (I : Internable V) where
  Keeps : Bump I.Units → List (I.Slot × V) → Prop
  keeps_empty : Keeps .empty []
  keeps_some : ∀ {arena arena' slots slot v}, Keeps arena slots → I.store v arena = (some slot, arena') →
    Keeps arena' ((slot, v) :: slots)
  keeps_none : ∀ {arena arena' slots v}, Keeps arena slots → I.store v arena = (none, arena') → Keeps arena' slots
  load : ∀ {arena slots slot v}, Keeps arena slots → (slot, v) ∈ slots → I.load slot arena.chunks = some v
  apart : ∀ {arena slots}, Keeps arena slots → slots.Pairwise fun e f => (I.span e.1).Apart (I.span f.1)
  inChunk : ∀ {arena slots}, Keeps arena slots → ∀ e ∈ slots, (I.span e.1).InChunk

namespace Internable

def sizedLawful (V : Type) : (sized V).Lawful where
  Keeps _ slots := ∀ e ∈ slots, e.1 = e.2
  keeps_empty := by simp
  keeps_some {arena arena' slots slot v} kept ran e mem := by
    obtain ⟨same, -⟩ := Prod.mk.inj ran
    rcases List.mem_cons.mp mem with rfl | old
    · exact (Option.some.inj same).symm
    · exact kept e old
  keeps_none _ ran := absurd (Prod.mk.inj ran).1 (Option.some_ne_none _)
  load kept mem := congrArg some (kept _ mem)
  apart kept := List.pairwise_of_forall fun _ _ n has => by
    obtain ⟨low, high⟩ := has
    simp [sized] at low high
  inChunk _ _ _ some := absurd rfl some

def sliceLawful (U : Type) : (slice U).Lawful where
  Keeps := Bump.Stored
  keeps_empty := Bump.stored_empty
  keeps_some kept ran := Bump.Stored.some kept ran
  keeps_none kept ran := Bump.Stored.none kept ran
  load kept mem := (Bump.Stored.placed kept _ mem).load
  apart kept := Bump.Stored.apart kept
  inChunk kept e mem := (Bump.Stored.placed kept e mem).inChunk

theorem fromUTF8_utf8 (s : String) : String.fromUTF8? ⟨(utf8 s).toArray⟩ = some s := by
  have bytes : (⟨(utf8 s).toArray⟩ : ByteArray) = s.toUTF8 := by rw [utf8, Array.toArray_toList]
  simp only [bytes, String.fromUTF8?, String.toUTF8_eq_toByteArray, dif_pos s.isValidUTF8]
  rfl

/-- The slots of strings, as slots of their bytes. -/
def byteSlots (slots : List (Span × String)) : List (Span × List UInt8) := slots.map fun e => (e.1, utf8 e.2)

theorem mem_byteSlots {slots : List (Span × String)} {e : Span × String} (mem : e ∈ slots) :
    (e.1, utf8 e.2) ∈ byteSlots slots := List.mem_map.mpr ⟨e, mem, rfl⟩

theorem apart_of_byteSlots {slots : List (Span × String)}
    (apart : (byteSlots slots).Pairwise fun e f => e.1.Apart f.1) : slots.Pairwise fun e f => e.1.Apart f.1 := by
  rwa [byteSlots, List.pairwise_map] at apart

/-- The bytes of a string are a slice, and the string is read back from them. -/
def strLawful : str.Lawful where
  Keeps arena slots := Bump.Stored arena (byteSlots slots)
  keeps_empty := Bump.stored_empty
  keeps_some {arena arena' slots slot v} kept ran := @Bump.Stored.some _ _ _ (utf8 v) slot (byteSlots slots) kept ran
  keeps_none {arena arena' slots v} kept ran := @Bump.Stored.none _ _ _ (utf8 v) (byteSlots slots) kept ran
  load {arena slots slot v} kept mem := by
    have bytes : loadSlice slot arena.chunks = some (utf8 v) := (Bump.Stored.placed kept _ (mem_byteSlots mem)).load
    change (loadSlice slot arena.chunks).bind (fun bytes => String.fromUTF8? ⟨bytes.toArray⟩) = some v
    rw [bytes]
    exact fromUTF8_utf8 v
  apart kept := apart_of_byteSlots (Bump.Stored.apart kept)
  inChunk kept e mem := (Bump.Stored.placed kept _ (mem_byteSlots mem)).inChunk

end Internable

variable {H : HashTable} {V : Type} [DecidableEq V] {I : Internable V} {config : Config} {hash64 : V → ℕ}

/-- A shard whose slots hold the listed values. -/
structure ShardInv (lawful : I.Lawful) (config : Config) (hash64 : V → ℕ) (s : ℕ) (shard : Shard H I)
    (slots : List (I.Slot × V)) : Prop where
  len : shard.len = slots.length
  published : shard.published = slots.length
  limit : slots.length ≤ config.limit
  nodup : (slots.map (·.2)).Nodup
  home : ∀ e ∈ slots, shardOf config hash64 e.2 = s
  table : ∀ e, e ∈ H.entries shard.table ↔ ∃ local_ slot v, slots[local_]? = some (slot, v) ∧
    e = (tableHash (hash32 hash64 v), entry (encode config s local_) (hash32 hash64 v))
  keeps : lawful.Keeps shard.arena slots.reverse
  written : ∀ local_ slot v, slots[local_]? = some (slot, v) → shard.slotAt local_ = some slot

/-- All shards, and the ids issued: an id names the value at its local index in the value's shard. -/
structure Inv (lawful : I.Lawful) (config : Config) (hash64 : V → ℕ) (system : System H I)
    (slots : ℕ → List (I.Slot × V)) : Prop where
  shards : ∀ s < config.S, ShardInv lawful config hash64 s (system.interner s) (slots s)
  issued : ∀ v id, (v, id) ∈ system.issued ↔
    ∃ local_ slot, (slots (shardOf config hash64 v))[local_]? = some (slot, v) ∧
      id = encode config (shardOf config hash64 v) local_

section Inv

variable {lawful : I.Lawful} {s local_ : ℕ} {shard : Shard H I} {slots : List (I.Slot × V)} {slot : I.Slot} {v : V}

theorem ShardInv.local_lt (inv : ShardInv lawful config hash64 s shard slots)
    (found : slots[local_]? = some (slot, v)) : local_ < config.limit := by
  obtain ⟨lt, -⟩ := List.getElem?_eq_some_iff.mp found
  exact lt.trans_le inv.limit

/-- The id of a slot reads the value back. -/
theorem ShardInv.get {interner : Interner H I} (inv : ShardInv lawful config hash64 s (interner s) slots)
    (inside : s < config.S) (found : slots[local_]? = some (slot, v)) :
    interner.get config (encode config s local_) = some v := by
  have mem : (slot, v) ∈ slots.reverse := List.mem_reverse.mpr (List.mem_of_getElem? found)
  rw [Interner.get, decode_encode inside (inv.local_lt found)]
  dsimp only
  rw [inv.written local_ slot v found, Option.bind_some, lawful.load inv.keeps mem]

theorem hash32_lt (v : V) : hash32 hash64 v < 2 ^ 32 := Nat.mod_lt _ (by decide)

/-- A look-up finds the id of a value in its shard, and no other. -/
theorem ShardInv.find {interner : Interner H I} (inv : ShardInv lawful config hash64 s (interner s) slots)
    (inside : s < config.S) :
    (∃ local_ slot, slots[local_]? = some (slot, v) ∧
      interner.find config (interner s).table (hash32 hash64 v) v = some (encode config s local_)) ∨
    ((∀ slot, (slot, v) ∉ slots) ∧ interner.find config (interner s).table (hash32 hash64 v) v = none) := by
  rw [Interner.find]
  cases found : H.find (interner s).table (tableHash (hash32 hash64 v)) fun e =>
      e >>> 32 % 2 ^ 32 = hash32 hash64 v ∧ interner.get config (e % 2 ^ 32) = some v with
  | some e =>
    obtain ⟨⟨e, mem, rfl⟩, matches_⟩ := H.find_some _ _ _ _ found
    obtain ⟨local_, slot, w, at_, rfl⟩ := (inv.table e).mp mem
    have bound := encode_lt inside (inv.local_lt at_)
    obtain ⟨-, same⟩ := of_decide_eq_true matches_
    dsimp only at same
    rw [entry_raw bound, inv.get inside at_] at same
    obtain rfl := Option.some.inj same
    exact .inl ⟨local_, slot, at_, by rw [Option.map_some, entry_raw bound]⟩
  | none =>
    refine .inr ⟨fun slot mem => ?_, rfl⟩
    obtain ⟨local_, at_⟩ := List.getElem?_of_mem mem
    have bound := encode_lt inside (inv.local_lt at_)
    have misses := H.find_none _ _ _ found _ ((inv.table _).mpr ⟨local_, slot, v, at_, rfl⟩) rfl
    have hits : entry (encode config s local_) (hash32 hash64 v) >>> 32 % 2 ^ 32 = hash32 hash64 v ∧
        interner.get config (entry (encode config s local_) (hash32 hash64 v) % 2 ^ 32) = some v :=
      ⟨entry_hash bound (hash32_lt v), by rw [entry_raw bound, inv.get inside at_]⟩
    exact absurd hits (of_decide_eq_false misses)

/-- The slot of the next local index, written into its bucket. -/
theorem slotAt_write (shard other : Shard H I) (slot : I.Slot) {b i : ℕ}
    (at_ : split local_ FIRST_BUCKET = (b, i)) (lt : b < BUCKETS) (same : other.slots = update shard.slots b
      (some (update ((shard.slots b).getD fun _ => none) i (some slot)))) :
    other.slotAt local_ = some slot ∧ ∀ local' slot', local' ≠ local_ → shard.slotAt local' = some slot' →
      other.slotAt local' = some slot' := by
  have power : FIRST_BUCKET = 2 ^ 6 := rfl
  rw [power] at at_
  obtain ⟨total, inside⟩ := split_eq_iff.mp at_
  constructor
  · have ok : ¬ (BUCKETS ≤ b ∨ 2 ^ 6 <<< b ≤ i) := by omega
    rw [Shard.slotAt, power, at_]
    dsimp only
    rw [if_neg ok, same, update_self, Option.bind_some, update_self]
  · intro local' slot' ne found
    obtain ⟨b', i', at', rest⟩ : ∃ b' i', split local' (2 ^ 6) = (b', i') ∧ True := ⟨_, _, rfl, trivial⟩
    obtain ⟨total', inside'⟩ := split_eq_iff.mp at'
    rw [Shard.slotAt, power, at'] at found ⊢
    dsimp only at found ⊢
    split_ifs at found ⊢ with bad
    obtain ⟨bucket, isBucket, isSlot⟩ := Option.bind_eq_some_iff.mp found
    rw [same]
    by_cases here : b' = b
    · subst here
      have index : i' ≠ i := by
        rintro rfl
        exact ne (by omega)
      rw [update_self, Option.bind_some, isBucket, Option.getD_some, update_of_ne index, isSlot]
    · rw [update_of_ne here, isBucket, Option.bind_some, isSlot]

/-- Allocating a bucket does not change a slot already written. -/
theorem slotAt_alloc (shard other : Shard H I) {b : ℕ}
    (same : other.slots = update shard.slots b (some ((shard.slots b).getD fun _ => none)))
    (found : shard.slotAt local_ = some slot) : other.slotAt local_ = some slot := by
  rw [Shard.slotAt] at found ⊢
  dsimp only at found ⊢
  split_ifs at found ⊢
  obtain ⟨bucket, isBucket, isSlot⟩ := Option.bind_eq_some_iff.mp found
  rw [same]
  by_cases here : (split local_ FIRST_BUCKET).1 = b
  · rw [here] at isBucket ⊢
    rw [update_self, isBucket, Option.getD_some, Option.bind_some, isSlot]
  · rw [update_of_ne here, isBucket, Option.bind_some, isSlot]

/-- No table is asked for more slots than there are buckets for. -/
theorem split_local_lt {b i : ℕ} (lt : local_ < config.limit) (at_ : split local_ FIRST_BUCKET = (b, i)) :
    b < BUCKETS := by
  have bound := limit_lt config
  have power : FIRST_BUCKET = 2 ^ 6 := rfl
  rw [power] at at_
  exact split_lt at_ (by rw [show BUCKETS = 27 from rfl]; omega)

/-- The entry of a slot hashes to what it was inserted with. -/
theorem entryHash_entry (inside : s < config.S) (lt : local_ < config.limit) :
    entryHash (entry (encode config s local_) (hash32 hash64 v)) = tableHash (hash32 hash64 v) := by
  rw [entryHash, entry_hash (encode_lt inside lt) (hash32_lt v)]

/-- A value that was not in its shard, written to the next slot. -/
theorem ShardInv.write {arena : Bump I.Units} {b i : ℕ}
    (inv : ShardInv lawful config hash64 (shardOf config hash64 v) shard slots) (new : ∀ slot, (slot, v) ∉ slots)
    (room : shard.len < config.limit) (at_ : split shard.len FIRST_BUCKET = (b, i))
    (stored : I.store v shard.arena = (some slot, arena)) :
    ShardInv lawful config hash64 (shardOf config hash64 v)
      { table := H.insertUnique shard.table (tableHash (hash32 hash64 v))
          (entry (encode config (shardOf config hash64 v) shard.len) (hash32 hash64 v)) entryHash
        len := shard.len + 1
        arena
        slots := update shard.slots b (some (update ((shard.slots b).getD fun _ => none) i (some slot)))
        published := shard.len + 1 } (slots ++ [(slot, v)]) := by
  have inside : shardOf config hash64 v < config.S := shardOf_lt v
  have len := inv.len
  have get_append : ∀ local_ slot' w, (slots ++ [(slot, v)])[local_]? = some (slot', w) ↔
      slots[local_]? = some (slot', w) ∨ (local_ = shard.len ∧ slot' = slot ∧ w = v) := by
    intro local_ slot' w
    rcases lt_trichotomy local_ slots.length with lt | rfl | gt
    · rw [List.getElem?_append_left lt]
      exact ⟨.inl, fun or => or.resolve_right fun same => by omega⟩
    · simp [len, eq_comm]
    · rw [List.getElem?_eq_none (by simp; omega), List.getElem?_eq_none (by omega)]
      simp
      omega
  constructor
  case len => simp [len]
  case published => simp [len]
  case limit =>
    rw [List.length_append, List.length_singleton]
    omega
  case nodup =>
    rw [List.map_append, List.map_singleton]
    refine List.nodup_append.mpr ⟨inv.nodup, List.nodup_singleton _, fun w mem u same => ?_⟩
    obtain ⟨⟨slot', w'⟩, old, rfl⟩ := List.mem_map.mp mem
    rw [List.mem_singleton.mp same]
    rintro rfl
    exact new slot' old
  case home =>
    intro e mem
    rcases List.mem_append.mp mem with old | new
    · exact inv.home e old
    · rw [List.mem_singleton.mp new]
  case table =>
    intro e
    have hashes : ∀ e ∈ H.entries shard.table, entryHash e.2 = e.1 := by
      intro e mem
      obtain ⟨local_, slot', w, found, rfl⟩ := (inv.table e).mp mem
      exact entryHash_entry inside (inv.local_lt found)
    rw [H.entries_insertUnique _ _ _ _ (entryHash_entry inside room) hashes, inv.table]
    constructor
    · rintro (rfl | ⟨local_, slot', w, found, rfl⟩)
      · exact ⟨shard.len, slot, v, (get_append _ _ _).mpr (.inr ⟨rfl, rfl, rfl⟩), rfl⟩
      · exact ⟨local_, slot', w, (get_append _ _ _).mpr (.inl found), rfl⟩
    · rintro ⟨local_, slot', w, found, rfl⟩
      rcases (get_append _ _ _).mp found with old | ⟨rfl, rfl, rfl⟩
      · exact .inr ⟨local_, slot', w, old, rfl⟩
      · exact .inl rfl
  case keeps =>
    rw [List.reverse_append, List.reverse_singleton, List.singleton_append]
    exact lawful.keeps_some inv.keeps stored
  case written =>
    intro local_ slot' w found
    rcases (get_append _ _ _).mp found with old | ⟨rfl, rfl, rfl⟩
    · refine (slotAt_write shard _ slot at_ (split_local_lt room at_) rfl).2 local_ slot' ?_
        (inv.written local_ slot' w old)
      rintro rfl
      rw [len, List.getElem?_eq_none le_rfl] at old
      cases old
    · exact (slotAt_write shard _ slot' at_ (split_local_lt room at_) rfl).1

end Inv

section Runs

variable {lawful : I.Lawful} {system : System H I} {slots : ℕ → List (I.Slot × V)}

theorem Inv.home (inv : Inv lawful config hash64 system slots) (v : V) :
    ShardInv lawful config hash64 (shardOf config hash64 v) (system.interner (shardOf config hash64 v))
      (slots (shardOf config hash64 v)) :=
  inv.shards _ (shardOf_lt v)

/-- A value has one local index. -/
theorem ShardInv.local_unique {s local_ local' : ℕ} {shard : Shard H I} {slots : List (I.Slot × V)} {slot slot' : I.Slot}
    {v : V} (inv : ShardInv lawful config hash64 s shard slots) (first : slots[local_]? = some (slot, v))
    (second : slots[local']? = some (slot', v)) : local_ = local' := by
  obtain ⟨lt, -⟩ := List.getElem?_eq_some_iff.mp first
  apply (List.getElem?_inj (by simpa using lt) inv.nodup).mp
  simp [first, second]

theorem encode_inj {s s' local_ local' : ℕ} (inside : s < config.S) (inside' : s' < config.S)
    (lt : local_ < config.limit) (lt' : local' < config.limit)
    (same : encode config s local_ = encode config s' local') : s = s' ∧ local_ = local' := by
  have decoded := congrArg (decode config) same
  rw [decode_encode inside lt, decode_encode inside' lt'] at decoded
  exact Prod.mk.inj decoded

/-- What the write of a value does to the shards: nothing to their slots, or one more in its own. -/
theorem Inv.write (inv : Inv lawful config hash64 system slots) (v : V) :
    ∃ slots' : ℕ → List (I.Slot × V), (∀ s < config.S, ShardInv lawful config hash64 s
        ((system.interner.internWrite config hash64 v).1 s) (slots' s)) ∧
      (∀ s, slots s <+: slots' s) ∧
      (((system.interner.internWrite config hash64 v).2 = none ∧ slots' = slots) ∨
        ∃ (local_ : ℕ) (slot : I.Slot), (slots' (shardOf config hash64 v))[local_]? = some (slot, v) ∧
          (system.interner.internWrite config hash64 v).2 = some (encode config (shardOf config hash64 v) local_) ∧
          ∀ w (local' : ℕ) slot', (slots' (shardOf config hash64 w))[local']? = some (slot', w) →
            (slots (shardOf config hash64 w))[local']? = some (slot', w) ∨ w = v) := by
  have inside : shardOf config hash64 v < config.S := shardOf_lt v
  have home := inv.home v
  rw [Interner.internWrite]
  dsimp only
  rcases home.find inside with ⟨local_, slot, found, hit⟩ | ⟨new, miss⟩
  · rw [hit]
    exact ⟨slots, inv.shards, fun _ => List.prefix_rfl, .inr ⟨local_, slot, found, rfl, fun _ _ _ old => .inl old⟩⟩
  · rw [miss]
    dsimp only
    split_ifs with full beyond
    · exact ⟨slots, inv.shards, fun _ => List.prefix_rfl, .inl ⟨rfl, rfl⟩⟩
    · exact ⟨slots, inv.shards, fun _ => List.prefix_rfl, .inl ⟨rfl, rfl⟩⟩
    · obtain ⟨b, i, at_⟩ : ∃ b i, split (system.interner (shardOf config hash64 v)).len FIRST_BUCKET = (b, i) := ⟨_, _, rfl⟩
      have room := not_le.mp full
      have raw : ((system.interner (shardOf config hash64 v)).len + 1) <<< config.log2S % 2 ^ 32 |||
          shardOf config hash64 v = encode config (shardOf config hash64 v) (system.interner (shardOf config hash64 v)).len := by
        have bound := encode_lt inside room
        rw [encode_eq inside, Config.S, ← Nat.shiftLeft_eq] at bound
        rw [Nat.mod_eq_of_lt (Nat.lt_of_le_of_lt (Nat.le_add_right _ _) bound), encode]
      rw [at_, raw]
      dsimp only
      cases stored : I.store v (system.interner (shardOf config hash64 v)).arena with
      | mk result arena =>
        cases result with
        | none =>
          refine ⟨slots, fun s lt => ?_, fun _ => List.prefix_rfl, .inl ⟨rfl, rfl⟩⟩
          by_cases here : s = shardOf config hash64 v
          · subst here
            dsimp only
            rw [update_self]
            exact ⟨home.len, home.published, home.limit, home.nodup, home.home, home.table,
              lawful.keeps_none home.keeps stored,
              fun local_ slot w found => slotAt_alloc _ _ rfl (home.written local_ slot w found)⟩
          · dsimp only
            rw [update_of_ne here]
            exact inv.shards s lt
        | some slot =>
          refine ⟨update slots (shardOf config hash64 v) (slots (shardOf config hash64 v) ++ [(slot, v)]),
            fun s lt => ?_, fun s => ?_, .inr ⟨(system.interner (shardOf config hash64 v)).len, slot, ?_, rfl, ?_⟩⟩
          · by_cases here : s = shardOf config hash64 v
            · subst here
              dsimp only
              rw [update_self, update_self]
              exact home.write new room at_ stored
            · dsimp only
              rw [update_of_ne here, update_of_ne here]
              exact inv.shards s lt
          · by_cases here : s = shardOf config hash64 v
            · subst here
              rw [update_self]
              exact List.prefix_append _ _
            · exact (update_of_ne here _ _).symm ▸ List.prefix_rfl
          · rw [update_self, home.len, List.getElem?_concat_length]
          · intro w local' slot' found
            by_cases here : shardOf config hash64 w = shardOf config hash64 v
            · rw [here, update_self] at found
              rw [here]
              rcases List.mem_append.mp (List.mem_of_getElem? found) with old | last
              · rcases lt_or_ge local' (slots (shardOf config hash64 v)).length with lt | ge
                · rw [List.getElem?_append_left lt] at found
                  exact .inl found
                · rw [List.getElem?_append_right ge, List.getElem?_singleton] at found
                  split_ifs at found
                  exact .inr (Prod.mk.inj (Option.some.inj found)).2.symm
              · exact .inr (Prod.mk.inj (List.mem_singleton.mp last)).2
            · rw [update_of_ne here] at found
              exact .inl found

/-- An id that a look-up returns has been issued. -/
theorem Inv.tryGet_issued (inv : Inv lawful config hash64 system slots) {v : V} {id : ℕ}
    (hit : system.interner.tryGet config hash64 v = some id) : (v, id) ∈ system.issued := by
  rcases (inv.home v).find (shardOf_lt v) with ⟨local_, slot, found, found'⟩ | ⟨-, miss⟩
  · obtain rfl := Option.some.inj (hit.symm.trans found')
    exact (inv.issued v _).mpr ⟨local_, slot, found, rfl⟩
  · cases hit.symm.trans miss

/-- Every step of every thread keeps the invariant, and no id is taken back. -/
theorem Inv.step (inv : Inv lawful config hash64 system slots) (step : Step V) :
    (∃ slots', Inv lawful config hash64 (system.step config hash64 step) slots') ∧
      ∀ e ∈ system.issued, e ∈ (system.step config hash64 step).issued := by
  have again : ∀ {v id}, system.interner.tryGet config hash64 v = some id →
      Inv lawful config hash64 { system with issued := system.issued ++ [(v, id)] } slots := by
    intro v id hit
    refine ⟨inv.shards, fun w jd => ?_⟩
    rw [← inv.issued, List.mem_append, List.mem_singleton]
    refine ⟨fun or => or.elim (fun old => old) fun same => ?_, .inl⟩
    obtain ⟨rfl, rfl⟩ := Prod.mk.inj same
    exact inv.tryGet_issued hit
  cases step with
  | intern v =>
    rw [System.step]
    cases hit : system.interner.tryGet config hash64 v with
    | some id => exact ⟨⟨slots, again hit⟩, fun e mem => List.mem_append_left _ mem⟩
    | none => exact ⟨⟨slots, inv.shards, inv.issued⟩, fun e mem => mem⟩
  | write v =>
    rw [System.step]
    split_ifs
    · obtain ⟨slots', shards, kept, result⟩ := inv.write v
      obtain ⟨interner, returned, ran⟩ : ∃ interner returned,
          system.interner.internWrite config hash64 v = (interner, returned) := ⟨_, _, rfl⟩
      rw [ran] at shards result ⊢
      rcases result with ⟨rfl, rfl⟩ | ⟨local_, slot, found, rfl, grown⟩
      · exact ⟨⟨slots', shards, inv.issued⟩, fun e mem => mem⟩
      · refine ⟨⟨slots', shards, fun w jd => ?_⟩, fun e mem => List.mem_append_left _ mem⟩
        dsimp only
        rw [List.mem_append, List.mem_singleton, inv.issued]
        constructor
        · rintro (⟨local', slot', old, rfl⟩ | same)
          · obtain ⟨lt, isSlot⟩ := List.getElem?_eq_some_iff.mp old
            exact ⟨local', slot', (List.prefix_iff_getElem?.mp (kept _) local' lt).trans (congrArg some isSlot), rfl⟩
          · obtain ⟨rfl, rfl⟩ := Prod.mk.inj same
            exact ⟨local_, slot, found, rfl⟩
        · rintro ⟨local', slot', found', rfl⟩
          rcases grown w local' slot' found' with old | rfl
          · exact .inl ⟨local', slot', old, rfl⟩
          · rw [(shards _ (shardOf_lt w)).local_unique found' found]
            exact .inr rfl
    · exact ⟨⟨slots, inv⟩, fun e mem => mem⟩
  | tryGet v =>
    rw [System.step]
    cases hit : system.interner.tryGet config hash64 v with
    | some id => exact ⟨⟨slots, again hit⟩, fun e mem => List.mem_append_left _ mem⟩
    | none => exact ⟨⟨slots, inv⟩, fun e mem => mem⟩
  | fromRaw raw => exact ⟨⟨slots, inv⟩, fun e mem => mem⟩

theorem Inv.start (lawful : I.Lawful) : Inv lawful config hash64 (System.start H I) fun _ => [] where
  shards s _ :=
    { len := rfl
      published := rfl
      limit := Nat.zero_le _
      nodup := .nil
      home := by simp
      table := by simp [System.start, Shard.new, H.entries_new]
      keeps := lawful.keeps_empty
      written := by simp }
  issued := by simp [System.start]

theorem Inv.run (inv : Inv lawful config hash64 system slots) (steps : List (Step V)) :
    (∃ slots', Inv lawful config hash64 (system.run config hash64 steps) slots') ∧
      ∀ e ∈ system.issued, e ∈ (system.run config hash64 steps).issued := by
  induction steps generalizing system slots with
  | nil => exact ⟨⟨slots, inv⟩, fun e mem => mem⟩
  | cons step steps ih =>
    obtain ⟨⟨slots', inv'⟩, kept⟩ := inv.step step
    obtain ⟨after, kept'⟩ := ih inv'
    exact ⟨after, fun e mem => kept' e (kept e mem)⟩

end Runs

/-- The issued ids and the values are in bijection. -/
structure Bijection (config : Config) (hash64 : V → ℕ) (system : System H I) : Prop where
  get_issued : ∀ v id, (v, id) ∈ system.issued → system.interner.get config id = some v
  id_eq_iff : ∀ v id w jd, (v, id) ∈ system.issued → (w, jd) ∈ system.issued → (id = jd ↔ v = w)
  fromRaw_iff : ∀ raw < 2 ^ 32, system.interner.fromRaw config raw = some raw ↔ ∃ v, (v, raw) ∈ system.issued
  id_bounds : ∀ v id, (v, id) ∈ system.issued → 0 < id ∧ id < 2 ^ config.bits
  /-- The spans in the slots of a shard. -/
  spans_inChunk : ∀ s < config.S, ∀ i < (system.interner s).len, ∃ slot,
    (system.interner s).slotAt i = some slot ∧ (I.span slot).InChunk
  spans_apart : ∀ s < config.S, ∀ i < (system.interner s).len, ∀ j < (system.interner s).len, i ≠ j →
    ∀ slot slot', (system.interner s).slotAt i = some slot → (system.interner s).slotAt j = some slot' →
      (I.span slot).Apart (I.span slot')

theorem Inv.bijection {lawful : I.Lawful} {system : System H I} {slots : ℕ → List (I.Slot × V)}
    (inv : Inv lawful config hash64 system slots) : Bijection config hash64 system := by
  have slot_of : ∀ s < config.S, ∀ i < (system.interner s).len, ∃ slot v, (slots s)[i]? = some (slot, v) ∧
      (system.interner s).slotAt i = some slot := by
    intro s lt i inside
    rw [(inv.shards s lt).len] at inside
    obtain ⟨⟨slot, v⟩, found⟩ : ∃ e, (slots s)[i]? = some e := ⟨_, List.getElem?_eq_getElem inside⟩
    exact ⟨slot, v, found, (inv.shards s lt).written i slot v found⟩
  constructor
  case get_issued =>
    intro v id issued
    obtain ⟨local_, slot, found, rfl⟩ := (inv.issued v id).mp issued
    exact (inv.home v).get (shardOf_lt v) found
  case id_eq_iff =>
    intro v id w jd first second
    obtain ⟨i, slot, found, rfl⟩ := (inv.issued v id).mp first
    obtain ⟨j, slot', found', rfl⟩ := (inv.issued w jd).mp second
    have home := inv.home v
    constructor
    · intro same
      obtain ⟨shard, rfl⟩ := encode_inj (shardOf_lt v) (shardOf_lt w) (home.local_lt found)
        ((inv.home w).local_lt found') same
      rw [← shard, found] at found'
      exact (Prod.mk.inj (Option.some.inj found')).2
    · rintro rfl
      rw [home.local_unique found found']
  case fromRaw_iff =>
    intro raw bound
    obtain ⟨s, local_, decoded⟩ : ∃ s local_, decode config raw = (s, local_) := ⟨_, _, rfl⟩
    have inside : s < config.S := by
      have first : raw % config.S = s := congrArg Prod.fst (decode_eq.symm.trans decoded)
      rw [← first]
      exact Nat.mod_lt _ (Nat.two_pow_pos _)
    have shard := inv.shards s inside
    rw [Interner.fromRaw, decoded]
    dsimp only
    rw [shard.published]
    constructor
    · intro answer
      split_ifs at answer with lt
      obtain ⟨⟨slot, v⟩, found⟩ : ∃ e, (slots s)[local_]? = some e := ⟨_, List.getElem?_eq_getElem lt⟩
      have isHome := shard.home _ (List.mem_of_getElem? found)
      have back : encode config (decode config raw).1 (decode config raw).2 = raw :=
        encode_decode (by rw [decoded]; exact shard.local_lt found) bound
      rw [decoded] at back
      refine ⟨v, (inv.issued v raw).mpr ⟨local_, slot, ?_, ?_⟩⟩
      · rwa [show shardOf config hash64 v = s from isHome]
      · rw [show shardOf config hash64 v = s from isHome, back]
    · rintro ⟨v, issued⟩
      obtain ⟨i, slot, found, rfl⟩ := (inv.issued v raw).mp issued
      have home := inv.home v
      rw [decode_encode (shardOf_lt v) (home.local_lt found)] at decoded
      obtain ⟨rfl, rfl⟩ := Prod.mk.inj decoded
      rw [if_pos (List.getElem?_eq_some_iff.mp found).1]
  case id_bounds =>
    intro v id issued
    obtain ⟨i, slot, found, rfl⟩ := (inv.issued v id).mp issued
    exact encode_bounds (shardOf_lt v) ((inv.home v).local_lt found)
  case spans_inChunk =>
    intro s lt i inside
    obtain ⟨slot, v, found, at_⟩ := slot_of s lt i inside
    exact ⟨slot, at_, lawful.inChunk (inv.shards s lt).keeps _ (List.mem_reverse.mpr (List.mem_of_getElem? found))⟩
  case spans_apart =>
    intro s lt i inside j inside' other slot slot' at_ at'
    obtain ⟨_, v, found, same⟩ := slot_of s lt i inside
    obtain rfl := Option.some.inj (same.symm.trans at_)
    obtain ⟨_, w, found', same'⟩ := slot_of s lt j inside'
    obtain rfl := Option.some.inj (same'.symm.trans at')
    have pairwise := List.pairwise_reverse.mp (lawful.apart (inv.shards s lt).keeps)
    obtain ⟨iLt, isI⟩ := List.getElem?_eq_some_iff.mp found
    obtain ⟨jLt, isJ⟩ := List.getElem?_eq_some_iff.mp found'
    rcases lt_or_gt_of_ne other with less | more
    · have apart := List.pairwise_iff_getElem.mp pairwise i j iLt jLt less
      rw [isI, isJ] at apart
      exact apart.symm
    · have apart := List.pairwise_iff_getElem.mp pairwise j i jLt iLt more
      rwa [isI, isJ] at apart

/-- What `Bijection` promises, for every hash, table and shard count and any interleaving of steps, and
that an id keeps its value whatever comes after. -/
def GrowingBijection {V : Type} [DecidableEq V] (I : Internable V) : Prop :=
  ∀ (H : HashTable) (config : Config) (hash64 : V → ℕ) (steps more : List (Step V)),
    Bijection config hash64 ((System.start H I).run config hash64 steps) ∧
    ∀ v id, (v, id) ∈ ((System.start H I).run config hash64 steps).issued →
      ((System.start H I).run config hash64 (steps ++ more)).interner.get config id = some v

theorem growingBijection_of_lawful (lawful : I.Lawful) : GrowingBijection I := by
  intro H config hash64 steps more
  have start : Inv lawful config hash64 (System.start H I) fun _ => [] := .start lawful
  obtain ⟨⟨slots, inv⟩, -⟩ := start.run steps
  refine ⟨inv.bijection, fun v id issued => ?_⟩
  obtain ⟨⟨slots', inv'⟩, kept⟩ := inv.run more
  rw [System.run, List.foldl_append]
  exact inv'.bijection.get_issued v id (kept _ issued)

end Ctadl.Immortal
