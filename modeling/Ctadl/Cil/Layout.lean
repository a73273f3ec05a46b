import Ctadl.Cil.Blocks

/-! # Where the records and blocks of a CIL body lie

The records follow each other without gaps, so a record is found by its offset and a block is a run of
records: the one that holds a record is the one whose piece of the table holds its index.
-/

namespace Ctadl.Cil

open Graph

theorem partitionPoint_eq {α : Type*} {p : α → Bool} {l : List α} {k : ℕ} (le : k ≤ l.length)
    (before : ∀ i a, i < k → l[i]? = some a → p a = true) (after : ∀ a, l[k]? = some a → p a = false) :
    partitionPoint p l = k := by
  unfold partitionPoint
  induction l generalizing k with
  | nil => exact (Nat.le_zero.mp le).symm
  | cons a l ih =>
    cases k with
    | zero =>
      have first : p a = false := after a rfl
      simp [first]
    | succ k =>
      have first : p a = true := before 0 a (Nat.succ_pos k) rfl
      rw [List.takeWhile_cons_of_pos first, List.length_cons, ih (Nat.le_of_succ_le_succ le)]
      · exact fun i b lt found => before (i + 1) b (Nat.succ_lt_succ lt) found
      · exact fun b found => after b found

/-- The offset is one where a record starts. -/
def Method.RecordStart (m : Method) (offset : ℕ) : Prop := ∃ r ∈ m.records, r.offset = offset

/-- The offset is behind the last record. -/
def Method.CodeEnd (m : Method) (offset : ℕ) : Prop := ∃ r, m.records.getLast? = some r ∧ r.endOffset = offset

/-- The records of a body that decodes follow each other, and branches and clauses start at records. -/
structure Method.Decoded (m : Method) : Prop where
  sizes : ∀ r ∈ m.records, 0 < r.size
  contiguous : m.records.IsChain fun r next => next.offset = r.endOffset
  targets : ∀ r ∈ m.records, ∀ t ∈ r.control.targets, m.RecordStart t
  starts : ∀ h ∈ m.handlers, ∀ b ∈ h.tryStart :: h.handlerStart :: h.filterStart.toList, m.RecordStart b
  stops : ∀ h ∈ m.handlers, ∀ b ∈ [h.tryEnd, h.handlerEnd], m.RecordStart b ∨ m.CodeEnd b

namespace Method

variable {m : Method} {i j : ℕ} {r r' : InsFlow}

theorem Decoded.next (decoded : m.Decoded) (found : m.records[i]? = some r) (found' : m.records[i + 1]? = some r') :
    r'.offset = r.endOffset := by
  obtain ⟨lt, at'⟩ := List.getElem?_eq_some_iff.mp found
  obtain ⟨lt', at''⟩ := List.getElem?_eq_some_iff.mp found'
  have chain := List.isChain_iff_getElem.mp decoded.contiguous i lt'
  rwa [at', at''] at chain

/-- Records further on start no earlier than where one ends. -/
theorem Decoded.endOffset_le (decoded : m.Decoded) (found : m.records[i]? = some r) (found' : m.records[j]? = some r')
    (lt : i < j) : r.endOffset ≤ r'.offset := by
  induction j generalizing r' with
  | zero => exact absurd lt (Nat.not_lt_zero i)
  | succ j ih =>
    obtain ⟨short, -⟩ := List.getElem?_eq_some_iff.mp found'
    have middle : m.records[j]? = some m.records[j] := List.getElem?_eq_getElem (by omega)
    have next := decoded.next middle found'
    have size := decoded.sizes _ (List.mem_of_getElem? middle)
    rcases Nat.lt_succ_iff_lt_or_eq.mp lt with before | rfl
    · have earlier := ih middle before
      unfold InsFlow.endOffset at next earlier ⊢
      omega
    · obtain rfl := Option.some.inj (found.symm.trans middle)
      exact next.ge

theorem Decoded.offset_lt (decoded : m.Decoded) (found : m.records[i]? = some r) (found' : m.records[j]? = some r')
    (lt : i < j) : r.offset < r'.offset := by
  have le := decoded.endOffset_le found found' lt
  have size := decoded.sizes _ (List.mem_of_getElem? found)
  unfold InsFlow.endOffset at le
  omega

theorem Decoded.offset_lt_iff (decoded : m.Decoded) (found : m.records[i]? = some r) (found' : m.records[j]? = some r') :
    r.offset < r'.offset ↔ i < j := by
  refine ⟨fun lt => ?_, decoded.offset_lt found found'⟩
  by_contra not
  rcases Nat.lt_or_eq_of_le (Nat.le_of_not_lt not) with before | rfl
  · exact absurd (decoded.offset_lt found' found before) (Nat.not_lt.mpr lt.le)
  · obtain rfl := Option.some.inj (found.symm.trans found')
    exact Nat.lt_irrefl _ lt

theorem Decoded.offset_lt_endOffset (decoded : m.Decoded) (found : m.records[i]? = some r) : r.offset < r.endOffset := by
  have size := decoded.sizes _ (List.mem_of_getElem? found)
  unfold InsFlow.endOffset
  omega

/-- A record is found at its offset. -/
theorem Decoded.recordAt (decoded : m.Decoded) (found : m.records[i]? = some r) : m.recordAt r.offset = some i := by
  obtain ⟨short, -⟩ := List.getElem?_eq_some_iff.mp found
  have point : partitionPoint (fun r' => decide (r'.offset ≤ r.offset)) m.records = i + 1 := by
    refine partitionPoint_eq short (fun j r' lt found' => ?_) fun r' found' => ?_
    · have not := decoded.offset_lt_iff found found'
      simp only [decide_eq_true_eq]
      omega
    · have later := decoded.offset_lt found found' (Nat.lt_succ_self i)
      simpa using later
  have inside := decoded.offset_lt_endOffset found
  simp [Method.recordAt, point, found, inside]

/-! ## Blocks -/

theorem leaders_sorted : m.leaders.Pairwise (· < ·) := List.pairwise_lt_range.filter _

theorem lt_of_mem_leaders (leader : i ∈ m.leaders) : i < m.records.length :=
  List.mem_range.mp (List.mem_of_mem_filter leader)

/-- The block with index `b` holds the records from `s` up to `e`. -/
def Piece (m : Method) (b s e : ℕ) : Prop := (pieces m.records.length m.leaders)[b]? = some (s, e)

variable {b s e : ℕ}

theorem Piece.leader (piece : m.Piece b s e) : s ∈ m.leaders := cut_of_mem (List.mem_of_getElem? piece)

theorem Piece.bounds (piece : m.Piece b s e) : s < e ∧ e ≤ m.records.length := by
  have start := lt_of_mem_leaders piece.leader
  rcases (mem_pieces leaders_sorted (List.mem_of_getElem? piece)).2 with ⟨lt, leader⟩ | ⟨rfl, -⟩
  · exact ⟨lt, (lt_of_mem_leaders leader).le⟩
  · exact ⟨start, le_rfl⟩

/-- Every record is in a block. -/
theorem exists_piece (short : i < m.records.length) : ∃ b s e, m.Piece b s e ∧ s ≤ i ∧ i < e := by
  have zero : 0 ∈ m.leaders := by
    simp only [leaders, List.mem_filter, List.mem_range]
    exact ⟨by omega, by simp⟩
  obtain ⟨s, e, member, inside⟩ := exists_piece_of_le zero (Nat.zero_le i) short
  obtain ⟨b, found⟩ := List.getElem?_of_mem member
  exact ⟨b, s, e, found, inside⟩

/-- A leader starts a block. -/
theorem exists_piece_of_leader (leader : i ∈ m.leaders) : ∃ b e, m.Piece b i e := by
  obtain ⟨e, member⟩ : ∃ e, (i, e) ∈ pieces m.records.length m.leaders := Graph.exists_piece leader
  obtain ⟨b, found⟩ := List.getElem?_of_mem member
  exact ⟨b, e, found⟩

theorem offsetOf_eq (found : m.records[i]? = some r) : m.offsetOf i = r.offset := by
  rw [offsetOf, found, Option.elim_some]

theorem endOf_eq (found : m.records[i]? = some r) : m.endOf i = r.endOffset := by
  rw [endOf, found, Option.elim_some]

theorem blocks_getElem? (b : ℕ) : m.blocks[b]? = (pieces m.records.length m.leaders)[b]?.map fun piece =>
    { start := m.offsetOf piece.1, stop := m.endOf (piece.2 - 1) } := by
  rw [blocks, List.getElem?_map]

theorem Piece.block (piece : m.Piece b s e) :
    m.blocks[b]? = some { start := m.offsetOf s, stop := m.endOf (e - 1) } := by
  rw [blocks_getElem?, piece, Option.map_some]

theorem exists_piece_of_block {block : Block} (found : m.blocks[b]? = some block) :
    ∃ s e, m.Piece b s e ∧ block = { start := m.offsetOf s, stop := m.endOf (e - 1) } := by
  rw [blocks_getElem?] at found
  obtain ⟨⟨s, e⟩, piece, rfl⟩ := Option.map_eq_some_iff.mp found
  exact ⟨s, e, piece, rfl⟩

/-- A block spans the bytes of its records. -/
theorem Piece.span (decoded : m.Decoded) (piece : m.Piece b s e) (found : m.records[i]? = some r) :
    (m.offsetOf s ≤ r.offset ↔ s ≤ i) ∧ (r.offset < m.endOf (e - 1) ↔ i < e) := by
  obtain ⟨lt, le⟩ := piece.bounds
  have first : m.records[s]? = some m.records[s] := List.getElem?_eq_getElem (by omega)
  have last : m.records[e - 1]? = some m.records[e - 1] := List.getElem?_eq_getElem (by omega)
  rw [offsetOf_eq first, endOf_eq last]
  constructor
  · have not := decoded.offset_lt_iff found first
    omega
  · constructor
    · intro inside
      by_contra past
      exact absurd (decoded.endOffset_le last found (by omega)) (Nat.not_le.mpr inside)
    · intro inside
      rcases Nat.lt_or_eq_of_le (Nat.le_sub_one_of_lt inside) with before | rfl
      · exact (decoded.offset_lt found last before).trans (decoded.offset_lt_endOffset last)
      · obtain rfl := Option.some.inj (found.symm.trans last)
        exact decoded.offset_lt_endOffset last

/-- The block found for a record's offset is the one that holds the record. -/
theorem Piece.blockOfRecord (decoded : m.Decoded) (piece : m.Piece b s e) (found : m.records[i]? = some r)
    (inside : s ≤ i ∧ i < e) : blockOfRecord m.blocks r.offset = some b := by
  have span := piece.span decoded found
  have short : b < m.blocks.length := (List.getElem?_eq_some_iff.mp piece.block).1
  have point : partitionPoint (fun block : Block => decide (block.start ≤ r.offset)) m.blocks = b + 1 := by
    refine partitionPoint_eq short (fun k block lt found' => ?_) fun block found' => ?_
    · obtain ⟨s', e', piece', rfl⟩ := exists_piece_of_block found'
      have before : s' ≤ s := by
        rcases Nat.lt_succ_iff_lt_or_eq.mp lt with earlier | rfl
        · exact (piece_start_lt leaders_sorted piece' piece earlier).le
        · obtain ⟨rfl, rfl⟩ := Prod.mk.inj (Option.some.inj (piece'.symm.trans piece))
          exact le_rfl
      have start := (piece'.span decoded found).1
      simp only [decide_eq_true_eq]
      omega
    · obtain ⟨s', e', piece', rfl⟩ := exists_piece_of_block found'
      have after := piece_start_lt leaders_sorted piece piece' (Nat.lt_succ_self b)
      have next := (mem_pieces leaders_sorted (List.mem_of_getElem? piece)).1 s' piece'.leader
      have start := (piece'.span decoded found).1
      simp only [decide_eq_false_iff_not]
      omega
  simp [Cil.blockOfRecord, point, piece.block, span, inside]

theorem Piece.blockAt (decoded : m.Decoded) (piece : m.Piece b i e) (found : m.records[i]? = some r) :
    blockAt m.blocks r.offset = some b := by
  have here := piece.blockOfRecord decoded found ⟨le_rfl, piece.bounds.1⟩
  simp [Cil.blockAt, here, piece.block, offsetOf_eq found]

/-- The last record of a block. -/
theorem Piece.lastRecord (decoded : m.Decoded) (piece : m.Piece b s e) {block : Block}
    (stop : block.stop = m.endOf (e - 1)) : m.lastRecord block = m.records[e - 1]? := by
  obtain ⟨lt, le⟩ := piece.bounds
  have point : partitionPoint (fun r : InsFlow => decide (r.offset < block.stop)) m.records = e := by
    refine partitionPoint_eq le (fun j r before found => ?_) fun r found => ?_
    · have span := (piece.span decoded found).2
      simp only [stop, decide_eq_true_eq]
      omega
    · have span := (piece.span decoded found).2
      simp only [stop, decide_eq_false_iff_not]
      omega
  rw [Method.lastRecord, point]

/-! ## Leaders -/

theorem mem_leaders : i ∈ m.leaders ↔ i < m.records.length ∧ (i = 0 ∨
    (∃ (j : ℕ) (r : InsFlow), m.records[j]? = some r ∧ i ∈ m.controlLeaders j r) ∨ ∃ h ∈ m.handlers, i ∈ m.boundLeaders h) := by
  simp only [leaders, List.mem_filter, List.mem_range, decide_eq_true_eq, List.mem_cons, List.mem_append, List.mem_flatMap]
  refine and_congr_right fun _ => or_congr_right (or_congr_left ?_)
  constructor
  · rintro ⟨⟨r, j⟩, member, leader⟩
    exact ⟨j, r, List.mem_zipIdx_iff_getElem?.mp member, leader⟩
  · rintro ⟨j, r, found, leader⟩
    exact ⟨(r, j), List.mem_zipIdx_iff_getElem?.mpr found, leader⟩

theorem RecordStart.index {t : ℕ} (start : m.RecordStart t) : ∃ (i : ℕ) (r : InsFlow), m.records[i]? = some r ∧ r.offset = t := by
  obtain ⟨r, member, offset⟩ := start
  obtain ⟨i, found⟩ := List.getElem?_of_mem member
  exact ⟨i, r, found, offset⟩

/-- A branch target starts a block. -/
theorem Decoded.leader_of_target (decoded : m.Decoded) (found : m.records[i]? = some r) (found' : m.records[j]? = some r')
    (target : r'.offset ∈ r.control.targets) : j ∈ m.leaders := by
  refine mem_leaders.mpr ⟨(List.getElem?_eq_some_iff.mp found').1, .inr (.inl ⟨i, r, found, ?_⟩)⟩
  exact List.mem_append_left _ (List.mem_filterMap.mpr ⟨r'.offset, target, decoded.recordAt found'⟩)

/-- So does what stands behind a record that does not only go on. -/
theorem leader_of_control (found : m.records[i]? = some r) (control : r.control ≠ .next)
    (short : i + 1 < m.records.length) : i + 1 ∈ m.leaders := by
  refine mem_leaders.mpr ⟨short, .inr (.inl ⟨i, r, found, List.mem_append_right _ ?_⟩)⟩
  simp [control]

/-- So does a bound of a clause. -/
theorem Decoded.leader_of_bound (decoded : m.Decoded) {h : Handler} (member : h ∈ m.handlers)
    (found : m.records[j]? = some r) (bound : r.offset ∈ h.bounds) : j ∈ m.leaders := by
  refine mem_leaders.mpr ⟨(List.getElem?_eq_some_iff.mp found).1, .inr (.inr ⟨h, member, ?_⟩)⟩
  refine List.mem_filterMap.mpr ⟨r.offset, bound, ?_⟩
  simp [decoded.recordAt found, found]

/-- A record that does not only go on is the last one of its block. -/
theorem Piece.last_of_control (piece : m.Piece b s e) (found : m.records[i]? = some r) (inside : s ≤ i ∧ i < e)
    (control : r.control ≠ .next) : e = i + 1 := by
  have bounds := piece.bounds
  by_cases short : i + 1 < m.records.length
  · have leader := leader_of_control found control short
    have cut := (mem_pieces leaders_sorted (List.mem_of_getElem? piece)).1 (i + 1) leader
    omega
  · omega

/-- No bound of a clause falls inside a block. -/
theorem Piece.le_bound_iff (decoded : m.Decoded) (piece : m.Piece b s e) {h : Handler} (member : h ∈ m.handlers)
    (found : m.records[i]? = some r) (inside : s ≤ i ∧ i < e) {t : ℕ} (bound : t ∈ h.bounds)
    (start : m.RecordStart t ∨ m.CodeEnd t) : t ≤ m.offsetOf s ↔ t ≤ r.offset := by
  obtain ⟨lt, le⟩ := piece.bounds
  have first : m.records[s]? = some m.records[s] := List.getElem?_eq_getElem (by omega)
  rw [offsetOf_eq first]
  rcases start with start | ⟨last, end', rfl⟩
  · obtain ⟨j, r', found', rfl⟩ := start.index
    have leader := decoded.leader_of_bound member found' bound
    have cut := (mem_pieces leaders_sorted (List.mem_of_getElem? piece)).1 j leader
    have left := decoded.offset_lt_iff first found'
    have right := decoded.offset_lt_iff found found'
    omega
  · rw [List.getLast?_eq_getElem?] at end'
    have before : ∀ (k : ℕ) (r' : InsFlow), m.records[k]? = some r' → r'.offset < last.endOffset := fun k r' found' => by
      have short := (List.getElem?_eq_some_iff.mp found').1
      rcases Nat.lt_or_eq_of_le (Nat.le_sub_one_of_lt short) with earlier | rfl
      · exact (decoded.offset_lt found' end' earlier).trans (decoded.offset_lt_endOffset end')
      · obtain rfl := Option.some.inj (found'.symm.trans end')
        exact decoded.offset_lt_endOffset end'
    have left := before s _ first
    have right := before i r found
    omega

/-- A block lies inside a try range or outside. -/
theorem Piece.tryContains_iff (decoded : m.Decoded) (piece : m.Piece b s e) {h : Handler} (member : h ∈ m.handlers)
    (found : m.records[i]? = some r) (inside : s ≤ i ∧ i < e) :
    h.tryContains (m.offsetOf s) = h.tryContains r.offset := by
  have start := piece.le_bound_iff decoded member found inside (t := h.tryStart) (by simp [Handler.bounds])
    (.inl (decoded.starts h member _ (by simp)))
  have stop := piece.le_bound_iff decoded member found inside (t := h.tryEnd) (by simp [Handler.bounds])
    (decoded.stops h member _ (by simp))
  rw [Bool.eq_iff_iff]
  simp only [Handler.tryContains, Bool.and_eq_true, decide_eq_true_eq]
  omega

end Method

end Ctadl.Cil
